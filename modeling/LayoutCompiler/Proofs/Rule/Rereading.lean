import LayoutCompiler.Proofs.Rule.Loading
/-!
# Reading rules back

Rules are written as data, and read from it. What is written of a rule that has been read is read as
that rule again: only where it comes from is lost, and neighbouring stretches of text in its
templates are one stretch. It also passes every check that it passed before, so that a document of
loaded rules is accepted again.

* `ElementRule.ofDatum_toDatum`, `AttributeRule.ofDatum_toDatum`: rules are read back.
* `read_toDatum`: so are documents.
-/

namespace LayoutCompiler

/-! ## Rules with other templates -/

namespace Blueprint

mutual

/-- The blueprint with every template replaced by its image. -/
def mapTemplates (f : Template → Template) : Blueprint → Blueprint
  | ⟨name, attributes, style, text, children, holder⟩ =>
    ⟨name, attributes.mapValues f, style.mapValues f, text.map f, mapAllTemplates f children,
      holder⟩

/-- The blueprints with every template replaced by its image. -/
def mapAllTemplates (f : Template → Template) : List Blueprint → List Blueprint
  | [] => []
  | b :: bs => b.mapTemplates f :: mapAllTemplates f bs

end

theorem mapAllTemplates_eq (f : Template → Template) (bs : List Blueprint) :
    mapAllTemplates f bs = bs.map (mapTemplates f) := by
  induction bs with
  | nil => rfl
  | cons b bs ih => rw [mapAllTemplates, ih, List.map_cons]

theorem toData_eq (bs : List Blueprint) : toData bs = bs.map toDatum := by
  induction bs with
  | nil => rfl
  | cons b bs ih => rw [toData, ih, List.map_cons]

theorem anyNameless_eq (bs : List Blueprint) :
    anyNameless bs = (bs.map isNameless).any id := by
  induction bs with
  | nil => rfl
  | cons b bs ih => rw [anyNameless, ih, List.map_cons, List.any_cons, id]

/-- Other templates make no node nameless. -/
theorem isNameless_mapTemplates (f : Template → Template) (b : Blueprint) :
    (b.mapTemplates f).isNameless = b.isNameless := by
  obtain ⟨name, attributes, style, text, children, holder⟩ := b
  have hchildren : children.map (isNameless ∘ mapTemplates f) = children.map isNameless :=
    List.map_congr_left fun b _ => isNameless_mapTemplates f b
  rw [mapTemplates, isNameless, isNameless, mapAllTemplates_eq, anyNameless_eq, anyNameless_eq,
    List.map_map, hchildren]

end Blueprint

/-- A rule as it is read back from its data, in a document from an origin. -/
def ElementRule.reread (origin : String) (r : ElementRule) : ElementRule :=
  { r with template := r.template.map (Blueprint.mapTemplates Template.joined), origin }

/-- An emission as it is read back from its data. -/
def Emission.reread (e : Emission) : Emission :=
  { e with path := e.path.joined, template := e.template.joined }

/-- A rule as it is read back from its data, in a document from an origin. -/
def AttributeRule.reread (origin : String) (r : AttributeRule) : AttributeRule :=
  { r with emit := r.emit.map Emission.reread, origin }

/-! ## Heights -/

namespace Datum

theorem height_le_items {d : Datum} {items : List Datum} (h : d ∈ items) :
    d.height ≤ heightOfItems items := by
  induction items with
  | nil => cases h
  | cons item items ih =>
    unfold heightOfItems
    rcases List.mem_cons.1 h with rfl | h
    · exact Nat.le_max_left _ _
    · exact Nat.le_trans (ih h) (Nat.le_max_right _ _)

theorem height_le_entries {e : String × Datum} {entries : List (String × Datum)}
    (h : e ∈ entries) : e.2.height ≤ heightOfEntries entries := by
  induction entries with
  | nil => cases h
  | cons entry entries ih =>
    unfold heightOfEntries
    rcases List.mem_cons.1 h with rfl | h
    · exact Nat.le_max_left _ _
    · exact Nat.le_trans (ih h) (Nat.le_max_right _ _)

/-- What is in a list at a field of a record is two levels below the record. -/
theorem height_lt_record {fields : List (String × Datum)} (hnodup : (fields.map Prod.fst).Nodup)
    (name : String) {items : List Datum} (hfield : fields.lookup name = some (.list items))
    {d : Datum} (hd : d ∈ items) : d.height + 2 ≤ (record fields).height := by
  have hentry : (name, list items) ∈ (SortedMap.ofList fields).entries := by
    rw [← SortedMap.get?_eq_some_iff, SortedMap.get?_ofList hnodup]
    exact hfield
  have hlist : (list items).height ≤ heightOfEntries (SortedMap.ofList fields).entries :=
    height_le_entries hentry
  have hitem : d.height ≤ heightOfItems items := height_le_items hd
  simp only [record, height] at hlist ⊢
  omega

/-! ## Reading back -/

theorem asTemplate_ofTemplate {t : Template} (h : t.Proper) :
    (ofTemplate t).asTemplate = .ok t.joined := congrArg Except.ok (Template.parse_display h)

theorem ofTemplate_ne_null (t : Template) : ofTemplate t ≠ .null := nofun

theorem optional_eq (v : Option String) : optional v = (v.map string).getD .null := by
  cases v <;> rfl

theorem asChoice_string {β : Type} (format : DataFormat) {cases : List (String × β)}
    {name : String} {value : β} (h : cases.lookup name = some value) :
    (string name).asChoice format cases = .ok value := by
  have hnamed : asChoice.named cases name = .ok value := by
    unfold asChoice.named
    rw [h]
  exact hnamed

end Datum

open Datum

variable {format : DataFormat}

theorem Datum.asList_texts (texts : List String) :
    (list (texts.map string)).asList asText = .ok texts := by
  have hread : (list (texts.map string)).asList asText = .ok (texts.map id) :=
    asList_map fun _ _ => rfl
  rwa [List.map_id] at hread

theorem Datum.asMap_texts (m : SortedMap String) :
    (table (m.mapValues string).entries).asMap asText = .ok m := by
  have hread : (table (m.mapValues string).entries).asMap asText = .ok (m.mapValues id) :=
    asMap_mapValues fun _ _ => rfl
  rwa [SortedMap.mapValues_id] at hread

namespace Fields

variable {fs : Fields} {name : String}

/-- A text that may be missing is read back. -/
theorem optional_text {v : Option String} (h : fs.present.lookup name = some (.optional v)) :
    fs.optional name asText = .ok v := by
  rw [Datum.optional_eq] at h
  have hread : fs.optional name asText = .ok (v.map id) :=
    optional_map h fun _ _ => ⟨nofun, rfl⟩
  rwa [Option.map_id] at hread

/-- A choice that may be missing is read back, when its cases have different names. -/
theorem optional_choice {β : Type} {cases : List (String × β)} {label : β → String}
    (hcases : ∀ c, cases.lookup (label c) = some c) {v : Option β}
    (h : fs.present.lookup name = some (.optional (v.map label))) :
    fs.optional name (asChoice format cases) = .ok v := by
  rw [Datum.optional_eq, Option.map_map] at h
  have hread : fs.optional name (asChoice format cases) = .ok (v.map id) :=
    optional_map h fun c _ => ⟨nofun, asChoice_string format (hcases c)⟩
  rwa [Option.map_id] at hread

end Fields

theorem Container.lookup_name (c : Container) : Container.names.lookup c.name = some c := by
  have table : ∀ entry ∈ Container.names, Container.names.lookup entry.1 = some entry.2 := by
    decide
  match c with
  | .linear => exact table ("linear", .linear) (by decide)
  | .frame => exact table ("frame", .frame) (by decide)
  | .scroll .vertical => exact table ("scroll-vertical", .scroll .vertical) (by decide)
  | .scroll .horizontal => exact table ("scroll-horizontal", .scroll .horizontal) (by decide)
  | .none => exact table ("none", .none) (by decide)

theorem EmissionKind.lookup_name (kind : EmissionKind) :
    EmissionKind.names.lookup kind.name = some kind := by
  cases kind <;> decide

theorem ValueKind.lookup_name (kind : ValueKind) :
    (ValueKind.all.map fun k => (k.name, k)).lookup kind.name = some kind := by
  cases kind <;> decide +kernel

namespace Blueprint

/-- Templates by name are read back. -/
theorem asMap_templates {m : SortedMap Template} (h : ∀ t ∈ m.values, t.Proper) :
    (templates m).asMap asTemplate = .ok (m.mapValues Template.joined) :=
  asMap_mapValues fun t ht => asTemplate_ofTemplate (h t ht)

/-- A blueprint is read back at every depth that its data fits in. -/
theorem decode_toDatum {levels : Nat} {b : Blueprint} (hlevels : b.toDatum.height ≤ levels)
    (hproper : ∀ t ∈ b.allTemplates, t.Proper) :
    decode format levels b.toDatum = .ok (b.mapTemplates Template.joined) := by
  induction levels generalizing b with
  | zero =>
    obtain ⟨name, attributes, style, text, children, holder⟩ := b
    simp [toDatum, record, height] at hlevels
  | succ levels ih =>
    obtain ⟨name, attributes, style, text, children, holder⟩ := b
    simp only [allTemplates, List.mem_append] at hproper
    unfold toDatum at hlevels ⊢
    -- the children are below the blueprint
    have hchildren : ∀ b ∈ children,
        decode format levels b.toDatum = .ok (b.mapTemplates Template.joined) := by
      intro b hb
      have hmem : b.toDatum ∈ toData children := by
        rw [toData_eq]
        exact List.mem_map_of_mem hb
      have hheight : b.toDatum.height + 2 ≤ levels + 1 := by
        refine Nat.le_trans (height_lt_record ?_ "children" ?_ hmem) hlevels
        · simp
        · rfl
      refine ih (by omega) fun t ht => ?_
      exact hproper t (Or.inr (mem_allTemplatesOf.2 ⟨b, hb, ht⟩))
    obtain ⟨fs, hfs, hlookup⟩ := asFields_record format
      [("name", .string name), ("attributes", templates attributes),
        ("style", templates style), ("text", .optional (text.map Template.display)),
        ("children", .list (toData children)), ("holder", .optional holder)]
      ["name", "attributes", "style", "text", "children", "holder"] rfl (by simp)
    have hname : fs.required "name" asText = .ok name := Fields.required_eq (hlookup "name")
    have hattributes : fs.withDefault "attributes" SortedMap.empty (asMap asTemplate) =
        .ok (attributes.mapValues Template.joined) :=
      (Fields.withDefault_eq (hlookup "attributes") _).trans
        (asMap_templates fun t ht => hproper t (Or.inl (Or.inl (Or.inl ht))))
    have hstyle : fs.withDefault "style" SortedMap.empty (asMap asTemplate) =
        .ok (style.mapValues Template.joined) :=
      (Fields.withDefault_eq (hlookup "style") _).trans
        (asMap_templates fun t ht => hproper t (Or.inl (Or.inl (Or.inr ht))))
    have htext : fs.optional "text" asTemplate = .ok (text.map Template.joined) := by
      have hfield : fs.present.lookup "text" = some ((text.map ofTemplate).getD .null) := by
        rw [hlookup]
        cases text <;> rfl
      refine Fields.optional_map hfield fun t ht => ⟨ofTemplate_ne_null t, ?_⟩
      exact asTemplate_ofTemplate (hproper t (Or.inl (Or.inr (Option.mem_toList.2 ht))))
    have hbelow : fs.withDefault "children" [] (asList (decode format levels)) =
        .ok (mapAllTemplates Template.joined children) := by
      refine (Fields.withDefault_eq (hlookup "children") _).trans ?_
      rw [toData_eq, mapAllTemplates_eq]
      exact asList_map hchildren
    have hholder : fs.optional "holder" asText = .ok holder :=
      Fields.optional_text (hlookup "holder")
    unfold decode
    rw [hfs]
    simp only [bind, Except.bind, hname, hattributes, hstyle, htext, hbelow, hholder]
    rfl

theorem ofDatum_toDatum {b : Blueprint} (h : ∀ t ∈ b.allTemplates, t.Proper) :
    ofDatum format b.toDatum = .ok (b.mapTemplates Template.joined) :=
  decode_toDatum (Nat.le_refl _) h

theorem toDatum_ne_null (b : Blueprint) : b.toDatum ≠ .null := by
  obtain ⟨name, attributes, style, text, children, holder⟩ := b
  unfold toDatum record
  exact nofun

end Blueprint

theorem ElementRule.ofDatum_toDatum {r : ElementRule} (h : ∀ t ∈ r.templates, t.Proper) :
    ofDatum format r.toDatum = .ok (r.reread "") := by
  obtain ⟨fs, hfs, hlookup⟩ := asFields_record format
    [("id", .string r.id),
      ("attributes", .table (r.attributes.mapValues .string).entries),
      ("parent", .optional r.parent),
      ("template", (r.template.map Blueprint.toDatum).getD .null),
      ("container", .optional (r.container.map Container.name)),
      ("auto-wrap-for", .list (r.autoWrapFor.map .string)),
      ("outlet-type", .optional r.outletType)]
    ["id", "attributes", "parent", "template", "container", "auto-wrap-for",
      "outlet-type"] rfl (by simp)
  -- each field is read back from the record by its name, whatever the others are
  have hid : fs.required "id" asText = .ok r.id := Fields.required_eq (hlookup "id")
  have hattributes : fs.withDefault "attributes" SortedMap.empty (asMap asText) =
      .ok r.attributes :=
    (Fields.withDefault_eq (hlookup "attributes") _).trans (asMap_texts r.attributes)
  have hparent : fs.optional "parent" asText = .ok r.parent :=
    Fields.optional_text (hlookup "parent")
  have htemplate : fs.optional "template" (Blueprint.ofDatum format) =
      .ok (r.template.map (Blueprint.mapTemplates Template.joined)) := by
    refine Fields.optional_map (hlookup "template") fun b hb => ⟨b.toDatum_ne_null, ?_⟩
    refine Blueprint.ofDatum_toDatum fun t ht => h t ?_
    unfold templates
    rw [hb]
    exact ht
  have hcontainer : fs.optional "container" (asChoice format Container.names) =
      .ok r.container :=
    Fields.optional_choice Container.lookup_name (hlookup "container")
  have hwrap : fs.withDefault "auto-wrap-for" [] (asList asText) = .ok r.autoWrapFor :=
    (Fields.withDefault_eq (hlookup "auto-wrap-for") _).trans (asList_texts r.autoWrapFor)
  have houtlet : fs.optional "outlet-type" asText = .ok r.outletType :=
    Fields.optional_text (hlookup "outlet-type")
  unfold ofDatum toDatum
  rw [hfs]
  simp only [bind, Except.bind, hid, hattributes, hparent, htemplate, hcontainer, hwrap, houtlet]
  rfl

theorem Emission.ofDatum_toDatum {e : Emission} (hpath : e.path.Proper)
    (htemplate : e.template.Proper) : ofDatum format e.toDatum = .ok e.reread := by
  obtain ⟨fs, hfs, hlookup⟩ := asFields_record format
    [("path", .ofTemplate e.path), ("kind", .string e.kind.name),
      ("template", .ofTemplate e.template), ("runtime-type", .optional e.runtimeType)]
    ["path", "kind", "template", "runtime-type"] rfl (by simp)
  -- a proper template is written as one text, and its pieces are joined when it is read
  have hpath' : fs.withDefault "path" ⟨[]⟩ asTemplate = .ok e.path.joined :=
    (Fields.withDefault_eq (hlookup "path") _).trans (asTemplate_ofTemplate hpath)
  have hkind : fs.withDefault "kind" .attribute (asChoice format EmissionKind.names) =
      .ok e.kind :=
    (Fields.withDefault_eq (hlookup "kind") _).trans (asChoice_string format e.kind.lookup_name)
  have htemplate' : fs.required "template" asTemplate = .ok e.template.joined :=
    (Fields.required_eq (hlookup "template")).trans (asTemplate_ofTemplate htemplate)
  have htype : fs.optional "runtime-type" asText = .ok e.runtimeType :=
    Fields.optional_text (hlookup "runtime-type")
  unfold ofDatum toDatum
  rw [hfs]
  simp only [bind, Except.bind, hpath', hkind, htemplate', htype]
  rfl

theorem AttributeRule.ofDatum_toDatum {r : AttributeRule} (h : ∀ t ∈ r.templates, t.Proper) :
    ofDatum format r.toDatum = .ok (r.reread "") := by
  obtain ⟨fs, hfs, hlookup⟩ := asFields_record format
    [("id", .string r.id), ("element", .string r.element),
      ("type", .string r.kind.name), ("equals", .optional r.equals),
      ("emit", .list (r.emit.map Emission.toDatum))]
    ["id", "element", "type", "equals", "emit"] rfl (by simp)
  have hid : fs.required "id" asText = .ok r.id := Fields.required_eq (hlookup "id")
  have helement : fs.required "element" asText = .ok r.element :=
    Fields.required_eq (hlookup "element")
  have hkind : fs.withDefault "type" .value
      (asChoice format (ValueKind.all.map fun k => (k.name, k))) = .ok r.kind :=
    (Fields.withDefault_eq (hlookup "type") _).trans (asChoice_string format r.kind.lookup_name)
  have hequals : fs.optional "equals" asText = .ok r.equals :=
    Fields.optional_text (hlookup "equals")
  have hemit : fs.withDefault "emit" [] (asList (Emission.ofDatum format)) =
      .ok (r.emit.map Emission.reread) := by
    refine (Fields.withDefault_eq (hlookup "emit") _).trans (asList_map fun e he => ?_)
    -- the templates of the rule are those of its emissions
    have hmem : ∀ t ∈ [e.path, e.template], t.Proper := by
      intro t ht
      exact h t (List.mem_flatMap.2 ⟨e, he, ht⟩)
    exact Emission.ofDatum_toDatum (hmem e.path (by simp)) (hmem e.template (by simp))
  unfold ofDatum toDatum
  rw [hfs]
  simp only [bind, Except.bind, hid, helement, hkind, hequals, hemit]
  rfl

/-! ## Checking again -/

/-- A rule that is read back is refused for what it was refused for before. -/
theorem ElementRule.fault_reread (origin : String) (r : ElementRule) :
    RuleDocument.elementFault? (r.reread origin) = RuleDocument.elementFault? r := by
  unfold RuleDocument.elementFault? reread
  cases r.template with
  | none => rfl
  | some b =>
    simp only [Option.map_some]
    rw [b.isNameless_mapTemplates]

theorem Template.isLiteral_joined (t : Template) : t.joined.isLiteral = t.isLiteral := by
  unfold isLiteral
  rw [holes_joined]

theorem Emission.pathIsReadable_reread (e : Emission) :
    RuleDocument.pathIsReadable e.reread = RuleDocument.pathIsReadable e := by
  unfold RuleDocument.pathIsReadable reread
  simp only [Template.isLiteral_joined, Template.write_joined]

/-- A rule that is read back is refused for what it was refused for before. -/
theorem AttributeRule.fault_reread (origin : String) (r : AttributeRule) :
    RuleDocument.attributeFault? (r.reread origin) = RuleDocument.attributeFault? r := by
  have hfind : (r.emit.map Emission.reread).find? (fun e => !RuleDocument.pathIsReadable e) =
      (r.emit.find? fun e => !RuleDocument.pathIsReadable e).map Emission.reread := by
    rw [List.find?_map]
    simp only [Function.comp_def, Emission.pathIsReadable_reread]
  unfold RuleDocument.attributeFault? reread
  rw [hfind]
  cases r.emit.find? fun e => !RuleDocument.pathIsReadable e with
  | none => rfl
  | some e =>
    simp only [Option.map_some, Emission.reread, Template.write_joined]

namespace RuleDocument

/-- A document as data. -/
def toDatum (document : RuleDocument) : Datum :=
  .record
    [("element", .list (document.elements.map ElementRule.toDatum)),
     ("attribute", .list (document.attributes.map AttributeRule.toDatum))]

/-- A document as it is read back from its data, with all rules coming from an origin. -/
def reread (origin : String) (document : RuleDocument) : RuleDocument :=
  { elements := document.elements.map (ElementRule.reread origin)
    attributes := document.attributes.map (AttributeRule.reread origin) }

variable {document : RuleDocument}

theorem withOrigin_reread (origin : String) (document : RuleDocument) :
    (document.reread "").withOrigin origin = document.reread origin := by
  unfold withOrigin reread
  simp only [List.map_map]
  rfl

theorem ofDatum_toDatum (helements : ∀ r ∈ document.elements, r.Loaded)
    (hattributes : ∀ r ∈ document.attributes, r.Loaded) :
    ofDatum format document.toDatum = .ok (document.reread "") := by
  obtain ⟨fs, hfs, hlookup⟩ := asFields_record format
    [("element", .list (document.elements.map ElementRule.toDatum)),
      ("attribute", .list (document.attributes.map AttributeRule.toDatum))]
    ["element", "attribute"] rfl (by simp)
  have helement : fs.withDefault "element" [] (asList (ElementRule.ofDatum format)) =
      .ok (document.elements.map (ElementRule.reread "")) :=
    (Fields.withDefault_eq (hlookup "element") _).trans
      (asList_map fun r hr => ElementRule.ofDatum_toDatum (helements r hr).proper)
  have hattribute : fs.withDefault "attribute" [] (asList (AttributeRule.ofDatum format)) =
      .ok (document.attributes.map (AttributeRule.reread "")) :=
    (Fields.withDefault_eq (hlookup "attribute") _).trans
      (asList_map fun r hr => AttributeRule.ofDatum_toDatum (hattributes r hr).proper)
  unfold ofDatum toDatum
  rw [hfs]
  simp only [bind, Except.bind, helement, hattribute]
  rfl

theorem fault?_reread (origin : String) (helements : ∀ r ∈ document.elements, r.Loaded)
    (hattributes : ∀ r ∈ document.attributes, r.Loaded) :
    (document.reread origin).fault? = none := by
  refine fault?_eq_none_iff.2 ⟨fun r hr => ?_, fun r hr => ?_⟩
  · obtain ⟨q, hq, rfl⟩ := List.mem_map.1 hr
    rw [ElementRule.fault_reread]
    exact (helements q hq).sound
  · obtain ⟨q, hq, rfl⟩ := List.mem_map.1 hr
    rw [AttributeRule.fault_reread]
    exact (hattributes q hq).sound

/-- A document of loaded rules is accepted again. -/
theorem read_toDatum (helements : ∀ r ∈ document.elements, r.Loaded)
    (hattributes : ∀ r ∈ document.attributes, r.Loaded) (origin : String) {text : String}
    (htext : parse format text = some document.toDatum) :
    read format origin text = .ok (document.reread "") := by
  have hdecode : decode format origin text = .ok (document.reread "") := by
    unfold decode
    rw [htext]
    simp only [ofDatum_toDatum helements hattributes]
  unfold read
  rw [hdecode]
  simp only [bind, Except.bind, fault?_reread "" helements hattributes]
  rfl

end RuleDocument

end LayoutCompiler
