import LayoutCompiler.Compilation.Emission
import LayoutCompiler.Output.Css
import LayoutCompiler.Proofs.Number.Rational
import LayoutCompiler.Proofs.Rule.Loading
import LayoutCompiler.Proofs.Text.Renderings
import LayoutCompiler.Proofs.Tree.Paths
import LayoutCompiler.Proofs.Tree.Styles
/-!
# Attributes that style sheets carry

An attribute whose rules write nothing but style declarations that do not ask for the element can
stand in a style sheet. What the style sheet says for it is what each element with the attribute
would say itself: the rule writes the same declarations on every element, and the style sheet has
them too.

* `plain_of_styleOnly`: what is known of the rule for such an attribute.
* `StyleEntry.row_filterMap`: the style entries that such a rule calls for.
* `emit_plain`: setting them is all that the rule does.
* `declarations_of_styleOnly`: a style sheet says what the elements would say.
-/

namespace LayoutCompiler

variable {α : Type} [Scalar α]

/-! ## Style entries -/

namespace StyleEntry

/-- The entries that emissions call for, in their order: one for each whose path ends in a name. The
segments in front of the name are the steps. -/
inductive Row (render : Template → String) : List Emission → List StyleEntry → Prop
  | nil : Row render [] []
  | named {e : Emission} {es : List Emission} {entries : List StyleEntry} {steps : List PathStep}
    {segments : List String} {property : String}
    (hpath : Text.split '/' (render e.path) = segments ++ [property])
    (hsteps : List.Forall₂ PathStep.Spells steps segments) (hproperty : property ≠ "")
    (h : Row render es entries) :
    Row render (e :: es) ({ steps, property, text := render e.template } :: entries)
  | unnamed {e : Emission} {es : List Emission} {entries : List StyleEntry}
    {segments : List String} (hpath : Text.split '/' (render e.path) = segments ++ [""])
    (h : Row render es entries) : Row render (e :: es) entries

/-- The entry that an emission writes, unless its path names no property. -/
def ofEmission? (r : Rendering α) (e : Emission) : Option StyleEntry :=
  match AttributePath.read (r.render e.path) with
  | .ok path => path.name.map fun property =>
      { steps := path.steps, property, text := r.render e.template }
  | .error _ => none

/-- The property with its text. -/
def declaration (entry : StyleEntry) : String × String := (entry.property, entry.text)

end StyleEntry

/-! ## Plain emissions -/

/-- An emission writes a style declaration that does not ask for the element, and where it writes it
can be read. -/
structure Emission.Plain (e : Emission) : Prop where
  kind : e.kind = .style
  literal : e.path.isLiteral = true
  detached : e.template.refersTo elementSegments = false
  readable : RuleDocument.pathIsReadable e = true

namespace Emission.Plain

variable {e : Emission}

/-- The path is always written the same. -/
theorem render_path (h : e.Plain) (r r' : Rendering α) : r.render e.path = r'.render e.path :=
  Template.write_of_isLiteral h.literal _ _

/-- The path can always be read. -/
theorem exists_path (h : e.Plain) (r : Rendering α) :
    ∃ path, AttributePath.read (r.render e.path) = .ok path := by
  have hread := h.readable
  simp only [RuleDocument.pathIsReadable, h.literal, h.kind, Bool.not_true, Bool.false_or] at hread
  have hwrite : r.render e.path = e.path.write fun _ => none :=
    Template.write_of_isLiteral h.literal _ _
  rw [hwrite]
  cases hpath : AttributePath.read (e.path.write fun _ => none) with
  | ok path => exact ⟨path, rfl⟩
  | error f =>
    rw [hpath] at hread
    cases hread

/-- On all elements the emission writes the same. -/
theorem render_template (h : e.Plain) (resources : ResourceTable α) (overrides : SortedMap String)
    (v : Value α) (s s' : Scope) :
    ({ resources, overrides, origin := .value v s SortedMap.empty } : Rendering α).render
        e.template =
      ({ resources, overrides, origin := .value v s' SortedMap.empty } : Rendering α).render
        e.template :=
  Rendering.render_detached resources overrides SortedMap.empty v s s' h.detached

/-- On all elements the emission has the same entry. -/
theorem ofEmission?_eq (h : e.Plain) (resources : ResourceTable α) (overrides : SortedMap String)
    (v : Value α) (s s' : Scope) :
    StyleEntry.ofEmission? { resources, overrides, origin := .value v s SortedMap.empty } e =
      StyleEntry.ofEmission? { resources, overrides, origin := .value v s' SortedMap.empty } e := by
  unfold StyleEntry.ofEmission?
  rw [h.render_path { resources, overrides, origin := .value v s SortedMap.empty }
      { resources, overrides, origin := .value v s' SortedMap.empty },
    h.render_template resources overrides v s s']

/-- The style sheet has the declaration of the entry. -/
theorem declaration?_eq (h : e.Plain) (r : Rendering α) :
    Css.declaration? r e = (StyleEntry.ofEmission? r e).map StyleEntry.declaration := by
  obtain ⟨path, hpath⟩ := h.exists_path r
  unfold Css.declaration? StyleEntry.ofEmission?
  rw [if_pos h.kind, hpath]
  cases hname : path.name <;> simp [hname, StyleEntry.declaration]

end Emission.Plain

/-- Plain emissions call for the entries that they write. -/
theorem StyleEntry.row_filterMap {emissions : List Emission} (h : ∀ e ∈ emissions, e.Plain)
    (r : Rendering α) : Row r.render emissions (emissions.filterMap (ofEmission? r)) := by
  induction emissions with
  | nil => exact .nil
  | cons e emissions ih =>
    obtain ⟨hplain, hrest⟩ := List.forall_mem_cons.1 h
    obtain ⟨⟨steps, name⟩, hread⟩ := hplain.exists_path r
    obtain ⟨hsteps, hname⟩ := AttributePath.read_eq_ok_iff.1 hread
    -- the last segment is the name, unless it is empty
    have hne := Text.split_ne_nil '/' (r.render e.path)
    have hsplit := (List.dropLast_append_getLast hne).symm
    rw [List.getLast?_eq_some_getLast hne, Option.filter_some] at hname
    rw [List.filterMap_cons]
    unfold ofEmission?
    rw [hread]
    dsimp only at hsteps hname ⊢
    split at hname
    · rename_i hfilled
      rw [hname, Option.map_some]
      rw [Bool.not_eq_true', Bool.eq_false_iff, Ne, String.isEmpty_iff] at hfilled
      exact .named hsplit hsteps hfilled (ih hrest)
    · rename_i hempty
      rw [hname, Option.map_none]
      rw [Bool.not_eq_true', Bool.not_eq_false, String.isEmpty_iff] at hempty
      rw [hempty] at hsplit
      exact .unnamed hsplit (ih hrest)

/-! ## Writing -/

namespace Compile

/-- A plain emission sets its entry and does nothing else. -/
theorem emit_plain_one {e : Emission} (h : e.Plain) (setting : Setting α) (node : Nat)
    (scope : Scope) (v : Value α) :
    emit setting node scope v e =
      edit ((StyleEntry.ofEmission? (valueRendering setting v scope SortedMap.empty) e).elim
        (pure ()) (StyleEntry.set node)) := by
  obtain ⟨path, hpath⟩ := h.exists_path (valueRendering setting v scope SortedMap.empty)
  unfold emit
  simp only [h.kind, emitOne, emission, StyleEntry.ofEmission?, hpath]
  cases hname : path.name with
  | none =>
    simp only [writeAt, hname, Except.map]
    rfl
  | some property =>
    simp only [writeAt, hname, Except.map]
    rfl

/-- Plain emissions set their entries, one after the other, and do nothing else. -/
theorem emit_plain {emissions : List Emission} (h : ∀ e ∈ emissions, e.Plain)
    (setting : Setting α) (node : Nat) (scope : Scope) (v : Value α) :
    emissions.forM (emit setting node scope v) =
      edit ((emissions.filterMap (StyleEntry.ofEmission?
        (valueRendering setting v scope SortedMap.empty))).forM (StyleEntry.set node)) := by
  induction emissions with
  | nil => rfl
  | cons e emissions ih =>
    have hrest := ih fun x hx => h x (List.mem_cons_of_mem e hx)
    have hfirst := emit_plain_one (h e List.mem_cons_self) setting node scope v
    refine (congrArg₂ Bind.bind hfirst (funext fun _ => hrest)).trans ?_
    rw [List.filterMap_cons]
    cases StyleEntry.ofEmission? (valueRendering setting v scope SortedMap.empty) e with
    | none => rfl
    | some entry => rfl

end Compile

/-! ## Rules -/

namespace RuleBook

/-- When a style sheet can carry an attribute on elements of a kind, all rules for it there write
style declarations only. -/
theorem isPlainStyle_of_isStyleOnly {book : RuleBook} {kind name : String}
    {rules : List AttributeRule} {rule : AttributeRule}
    (hstyle : book.isStyleOnly kind name = true) (hrules : book.attributes.get? name = some rules)
    (hmem : rule ∈ rules) (helement : rule.element = kind) : rule.isPlainStyle = true := by
  have hfilter : rule ∈ rules.filter fun r => r.element == kind :=
    List.mem_filter.2 ⟨hmem, beq_iff_eq.2 helement⟩
  unfold isStyleOnly at hstyle
  rw [hrules, Option.getD_some] at hstyle
  split at hstyle
  · cases hstyle
  · exact List.all_eq_true.1 hstyle rule hfilter

/-- The rule for an attribute that a style sheet can carry has plain emissions only. -/
theorem plain_of_styleOnly {texts : List (DataFormat × String × String)} {kind name raw : String}
    {valueKind : ValueKind} {rule : AttributeRule}
    (hstyle : (ofTexts texts).isStyleOnly kind name = true)
    (hrule : (ofTexts texts).matchAttribute? kind name valueKind raw = some rule) :
    ∀ e ∈ rule.emit, e.Plain := by
  obtain ⟨rules, hrules, hfind⟩ := Option.bind_eq_some_iff.1 hrule
  have hmem : rule ∈ rules := List.mem_of_find?_eq_some hfind
  have haccepts : rule.accepts kind valueKind raw = true := by
    simpa using List.find?_some hfind
  have helement : rule.element = kind := (AttributeRule.accepts_iff_fits.1 haccepts).element
  -- a name is one of styles alone only if all rules for the element are plain
  have hplain : rule.isPlainStyle = true :=
    isPlainStyle_of_isStyleOnly hstyle hrules hmem helement
  have hloaded : rule.Loaded := (arranged_ofTexts_attributes texts).holds hrules rule hmem
  intro e he
  have hemission := List.all_eq_true.1 hplain e he
  simp only [Emission.hasSimplePath, Bool.and_eq_true, beq_iff_eq, Bool.not_eq_true'] at hemission
  obtain ⟨⟨hkind, hliteral, -⟩, hdetached⟩ := hemission
  exact ⟨hkind, hliteral, hdetached, RuleDocument.readable_of_sound hloaded.sound e he⟩

/-! ## Main statement -/

/-- An attribute that a style sheet can carry on elements of a kind, with the rule for its value:
every emission of the rule is written the same for all elements, and there is one row of style
entries that the emissions call for on all of them. Below whatever node of a tree in which only
nodes are listed the rule is applied, it sets just these entries, and the style sheet has their
declarations, too, if it looks at that kind. -/
theorem declarations_of_styleOnly (texts : List (DataFormat × String × String))
    (resources : ResourceTable α) (options : Options) (kind name raw : String) (v : Value α)
    (rule : AttributeRule) (hstyle : (ofTexts texts).isStyleOnly kind name = true)
    (hread : resources.read raw = .ok v)
    (hrule : (ofTexts texts).matchAttribute? kind name v.kind raw = some rule) :
    let setting : Setting α := { book := ofTexts texts, resources, options }
    let apply := fun (node : Nat) (scope : Scope) =>
      rule.emit.forM (Compile.emit setting node scope v)
    (∀ s s' : Scope, ∀ e ∈ rule.emit,
      (Compile.valueRendering setting v s SortedMap.empty).render e.path =
        (Compile.valueRendering setting v s' SortedMap.empty).render e.path ∧
      (Compile.valueRendering setting v s SortedMap.empty).render e.template =
        (Compile.valueRendering setting v s' SortedMap.empty).render e.template) ∧
    (∀ (node : Nat) (s s' : Scope), apply node s = apply node s') ∧
    ∃ entries : List StyleEntry,
      (∀ scope : Scope, StyleEntry.Row
        (Compile.valueRendering setting v scope SortedMap.empty).render rule.emit entries) ∧
      (∀ (node : Nat) (scope : Scope) (pass : Pass α), pass.tree.Closed → node < pass.tree.size →
        ∃ tree, apply node scope pass = .ok ((), { pass with tree }) ∧
          Tree.Styled node entries pass.tree tree) ∧
      rule.emit.filterMap
          (Css.declaration? (Css.rendering resources options.overrides kind v)) =
        entries.map StyleEntry.declaration ∧
      ((ofTexts texts).tags.find? (fun tag => (ofTexts texts).isStyleOnly tag name) = some kind →
        Css.declarations (ofTexts texts) resources options.overrides name raw =
          entries.map StyleEntry.declaration) := by
  intro setting apply
  have hplain := plain_of_styleOnly hstyle hrule
  -- the style sheet renders for an element of its own, which is as good as any other
  let sheet := Css.rendering resources options.overrides kind v
  have hentries : ∀ scope : Scope, rule.emit.filterMap
      (StyleEntry.ofEmission? (Compile.valueRendering setting v scope SortedMap.empty)) =
      rule.emit.filterMap (StyleEntry.ofEmission? sheet) := by
    intro scope
    refine List.filterMap_congr fun e he => ?_
    exact (hplain e he).ofEmission?_eq resources options.overrides v scope _
  have hsheet : rule.emit.filterMap (Css.declaration? sheet) =
      (rule.emit.filterMap (StyleEntry.ofEmission? sheet)).map StyleEntry.declaration := by
    rw [List.map_filterMap]
    exact List.filterMap_congr fun e he => (hplain e he).declaration?_eq sheet
  have happly : ∀ (node : Nat) (scope : Scope), apply node scope =
      Compile.edit ((rule.emit.filterMap (StyleEntry.ofEmission? sheet)).forM
        (StyleEntry.set node)) := by
    intro node scope
    rw [← hentries scope]
    exact Compile.emit_plain hplain setting node scope v
  refine ⟨?_, fun node s s' => (happly node s).trans (happly node s').symm,
    rule.emit.filterMap (StyleEntry.ofEmission? sheet), ?_, ?_, hsheet, ?_⟩
  · intro s s' e he
    constructor
    · exact (hplain e he).render_path _ _
    · exact (hplain e he).render_template resources options.overrides v s s'
  · intro scope
    rw [← hentries scope]
    exact StyleEntry.row_filterMap hplain _
  · intro node scope pass hclosed hnode
    rw [happly]
    exact ⟨_, rfl, StyleEntry.forM_set_styled hclosed hnode _⟩
  · intro hkind
    unfold Css.declarations
    rw [hkind, hread]
    simp only [hrule]
    exact hsheet

namespace Sample

/-- A rule for one kind of elements that writes the value to a property of the node and to one of a
node below it. -/
def styling : List (DataFormat × String × String) :=
  [(.json, "a.json",
    "\x7b\"element\":[\x7b\"id\":\"V\"\x7d],\"attribute\":[\x7b\"id\":\"a\",\"element\":\"V\"," ++
    "\"emit\":[\x7b\"kind\":\"style\",\"path\":\"p\",\"template\":\"~value~\"\x7d," ++
    "\x7b\"kind\":\"style\",\"path\":\"icon/q\",\"template\":\"~value~\"\x7d]\x7d]\x7d")]

/-- The emissions of that rule. -/
def styled : List Emission :=
  [{ path := "p", kind := .style, template := "~value~" },
    { path := "icon/q", kind := .style, template := "~value~" }]

/-- A node with two declarations, one of them for the property that the rule writes. -/
def view : Pass ℚ where
  tree :=
    { nodes := #[{ name := "V", style := [("r", "c"), ("p", "d")] }]
      root := some 0
      ids := { seed := "a.xml" } }

/-- What the rule leaves when it is applied to that node. -/
def applied : Except Failure (Unit × Pass ℚ) :=
  styled.forM (Compile.emit { book := ofTexts styling, resources := {}, options := {} } 0
    (Scope.enter none ⟨{ tag := "V" }, SortedMap.empty⟩) (.text "b")) view

theorem declarations_of_styleOnly_value : ∃ entries tree,
    applied = .ok ((), { view with tree }) ∧ Tree.Styled 0 entries view.tree tree ∧
    tree.nodes = #[{ name := "V", style := [("r", "c"), ("p", "b")], children := [1] },
      { name := "icon", style := [("q", "b")], parent := some 0 }] ∧
    entries.map StyleEntry.declaration = [("p", "b"), ("q", "b")] ∧
    Css.declarations (ofTexts styling) ({} : ResourceTable ℚ) SortedMap.empty "a" "b" =
      [("p", "b"), ("q", "b")] := by
  have hstyle : (ofTexts styling).isStyleOnly "V" "a" = true := by decide +kernel
  have hread : ({} : ResourceTable ℚ).read "b" = .ok (.text "b") := rfl
  have hrule : (ofTexts styling).matchAttribute? "V" "a" .stringLiteral "b" =
      some { id := "a", element := "V", emit := styled, origin := "a.json" } := by
    decide +kernel
  have htags : (ofTexts styling).tags.find? (fun tag => (ofTexts styling).isStyleOnly tag "a") =
      some "V" := by decide +kernel
  have hclosed : view.tree.Closed := by
    intro p c hmem
    cases p <;> cases hmem
  obtain ⟨-, -, entries, -, happly, hdeclared, hsheet⟩ :=
    declarations_of_styleOnly styling {} {} "V" "a" "b" _ _ hstyle hread hrule
  obtain ⟨tree, hrun, hstyled⟩ :=
    happly 0 (Scope.enter none ⟨{ tag := "V" }, SortedMap.empty⟩) view hclosed (by decide)
  have hnodes : applied.toOption.map (fun result => result.2.tree.nodes) =
      some #[{ name := "V", style := [("r", "c"), ("p", "b")], children := [1] },
        { name := "icon", style := [("q", "b")], parent := some 0 }] := by
    decide +kernel
  have hentries : entries.map StyleEntry.declaration = [("p", "b"), ("q", "b")] := by
    rw [← hdeclared]
    decide +kernel
  have hok : applied = .ok ((), { view with tree }) := hrun
  rw [hok] at hnodes
  exact ⟨entries, tree, hok, hstyled, Option.some.inj hnodes, hentries,
    (hsheet htags).trans hentries⟩

end Sample

end RuleBook

end LayoutCompiler
