import LayoutCompiler.Proofs.Data.Records
import LayoutCompiler.Proofs.Rule.Acceptance
import LayoutCompiler.Proofs.Text.Templates
/-!
# Books of loaded rules

A book that only texts have been loaded into has rules of one kind only: each has been read from
data, so that its templates are ones that texts denote, and each has passed the checks of its
document. The rules for a name stand in one list, which is not empty, in order of rank.

* `RuleBook.ofTexts`: the book of some texts, those that are refused left out.
* `arranged_ofTexts_elements`, `arranged_ofTexts_attributes`: what is known of its lists.
-/

namespace LayoutCompiler

/-! ## The templates of rules -/

/-- All stretches and holes of a template are ones that can be read. -/
def Template.Proper (t : Template) : Prop := ∀ p ∈ t.parts, p.Proper

namespace Blueprint

mutual

/-- All templates of a blueprint, with those of its children. -/
def allTemplates : Blueprint → List Template
  | ⟨_, attributes, style, text, children, _⟩ =>
    attributes.values ++ style.values ++ text.toList ++ allTemplatesOf children

/-- All templates of blueprints. -/
def allTemplatesOf : List Blueprint → List Template
  | [] => []
  | b :: bs => b.allTemplates ++ allTemplatesOf bs

end

theorem mem_allTemplatesOf {t : Template} {bs : List Blueprint} :
    t ∈ allTemplatesOf bs ↔ ∃ b ∈ bs, t ∈ b.allTemplates := by
  induction bs with
  | nil => simp [allTemplatesOf]
  | cons b bs ih => simp [allTemplatesOf, ih]

end Blueprint

/-- All templates of an element rule. -/
def ElementRule.templates (r : ElementRule) : List Template :=
  r.template.elim [] Blueprint.allTemplates

/-- All templates of an attribute rule. -/
def AttributeRule.templates (r : AttributeRule) : List Template :=
  r.emit.flatMap fun e => [e.path, e.template]

/-! ## Templates that have been read -/

section

open Datum

theorem gives_asTemplate : Gives asTemplate Template.Proper := by
  intro d t ht
  cases d with
  | string s =>
    cases ht
    exact Template.proper_of_parse s
  | _ => cases ht

namespace Blueprint

theorem gives_decode (format : DataFormat) (levels : Nat) :
    Gives (decode format levels) fun b => ∀ t ∈ b.allTemplates, t.Proper := by
  induction levels with
  | zero =>
    intro d b hb
    cases hb
  | succ levels ih =>
    intro d b hb
    obtain ⟨fs, -, hb⟩ := bind_eq_ok_iff.1 hb
    obtain ⟨name, -, hb⟩ := bind_eq_ok_iff.1 hb
    obtain ⟨attributes, hattributes, hb⟩ := bind_eq_ok_iff.1 hb
    obtain ⟨style, hstyle, hb⟩ := bind_eq_ok_iff.1 hb
    obtain ⟨text, htext, hb⟩ := bind_eq_ok_iff.1 hb
    obtain ⟨children, hchildren, hb⟩ := bind_eq_ok_iff.1 hb
    obtain ⟨holder, -, hb⟩ := bind_eq_ok_iff.1 hb
    cases hb
    -- each field is missing or read by a reader that gives proper templates
    have hmap : ∀ {name : String} {m : SortedMap Template},
        fs.withDefault name SortedMap.empty (asMap asTemplate) = .ok m →
        ∀ t ∈ m.values, t.Proper := by
      intro name m hm
      refine Fields.withDefault_gives gives_asTemplate.asMap ?_ hm
      simp [SortedMap.values, SortedMap.empty]
    have hbelow := Fields.withDefault_gives ih.asList (by simp) hchildren
    intro t ht
    simp only [allTemplates, List.mem_append] at ht
    rcases ht with ((ht | ht) | ht) | ht
    · exact hmap hattributes t ht
    · exact hmap hstyle t ht
    · exact Fields.optional_gives gives_asTemplate htext t (Option.mem_toList.1 ht)
    · obtain ⟨b, hb, ht⟩ := mem_allTemplatesOf.1 ht
      exact hbelow b hb t ht

end Blueprint

theorem ElementRule.gives_ofDatum (format : DataFormat) :
    Gives (ElementRule.ofDatum format) fun r => ∀ t ∈ r.templates, t.Proper := by
  intro d r hr
  obtain ⟨fs, -, hr⟩ := bind_eq_ok_iff.1 hr
  obtain ⟨id, -, hr⟩ := bind_eq_ok_iff.1 hr
  obtain ⟨attributes, -, hr⟩ := bind_eq_ok_iff.1 hr
  obtain ⟨parent, -, hr⟩ := bind_eq_ok_iff.1 hr
  obtain ⟨template, htemplate, hr⟩ := bind_eq_ok_iff.1 hr
  obtain ⟨container, -, hr⟩ := bind_eq_ok_iff.1 hr
  obtain ⟨autoWrapFor, -, hr⟩ := bind_eq_ok_iff.1 hr
  obtain ⟨outletType, -, hr⟩ := bind_eq_ok_iff.1 hr
  cases hr
  -- the only templates of the rule are those of its blueprint
  have hread : Gives (Blueprint.ofDatum format) fun b => ∀ t ∈ b.allTemplates, t.Proper := by
    intro d b hb
    exact Blueprint.gives_decode format d.height d b hb
  intro t ht
  cases template with
  | none => cases ht
  | some b => exact Fields.optional_gives hread htemplate b rfl t ht

theorem Emission.gives_ofDatum (format : DataFormat) :
    Gives (Emission.ofDatum format) fun e => e.path.Proper ∧ e.template.Proper := by
  intro d e he
  obtain ⟨fs, -, he⟩ := bind_eq_ok_iff.1 he
  obtain ⟨path, hpath, he⟩ := bind_eq_ok_iff.1 he
  obtain ⟨kind, -, he⟩ := bind_eq_ok_iff.1 he
  obtain ⟨template, htemplate, he⟩ := bind_eq_ok_iff.1 he
  obtain ⟨runtimeType, -, he⟩ := bind_eq_ok_iff.1 he
  cases he
  constructor
  · exact Fields.withDefault_gives gives_asTemplate (by simp [Template.Proper]) hpath
  · exact Fields.required_gives gives_asTemplate htemplate

theorem AttributeRule.gives_ofDatum (format : DataFormat) :
    Gives (AttributeRule.ofDatum format) fun r => ∀ t ∈ r.templates, t.Proper := by
  intro d r hr
  obtain ⟨fs, -, hr⟩ := bind_eq_ok_iff.1 hr
  obtain ⟨id, -, hr⟩ := bind_eq_ok_iff.1 hr
  obtain ⟨element, -, hr⟩ := bind_eq_ok_iff.1 hr
  obtain ⟨kind, -, hr⟩ := bind_eq_ok_iff.1 hr
  obtain ⟨equals, -, hr⟩ := bind_eq_ok_iff.1 hr
  obtain ⟨emit, hemit, hr⟩ := bind_eq_ok_iff.1 hr
  cases hr
  have hall := Fields.withDefault_gives (Emission.gives_ofDatum format).asList (by simp) hemit
  intro t ht
  obtain ⟨e, he, ht⟩ := List.mem_flatMap.1 ht
  obtain ⟨hpath, htemplate⟩ := hall e he
  rcases List.mem_cons.1 ht with rfl | ht
  · exact hpath
  · rw [List.mem_singleton.1 ht]
    exact htemplate

end

/-! ## Rules that have been loaded -/

/-- An element rule that has been read and has passed the checks. -/
structure ElementRule.Loaded (r : ElementRule) : Prop where
  proper : ∀ t ∈ r.templates, t.Proper
  sound : RuleDocument.elementFault? r = none

/-- An attribute rule that has been read and has passed the checks. -/
structure AttributeRule.Loaded (r : AttributeRule) : Prop where
  proper : ∀ t ∈ r.templates, t.Proper
  sound : RuleDocument.attributeFault? r = none

/-- All paths of a rule that has passed the checks can be read, if they have no holes. -/
theorem RuleDocument.readable_of_sound {r : AttributeRule} (h : attributeFault? r = none) :
    ∀ e ∈ r.emit, pathIsReadable e = true := by
  unfold attributeFault? at h
  split at h
  · cases h
  · split at h
    · cases h
    · rename_i hnone
      simpa using List.find?_eq_none.1 hnone

namespace RuleDocument

theorem gives_ofDatum (format : DataFormat) : Datum.Gives (ofDatum format) fun document =>
    (∀ r ∈ document.elements, ∀ t ∈ r.templates, t.Proper) ∧
    ∀ r ∈ document.attributes, ∀ t ∈ r.templates, t.Proper := by
  intro d document hd
  obtain ⟨fs, -, hd⟩ := bind_eq_ok_iff.1 hd
  obtain ⟨elements, helements, hd⟩ := bind_eq_ok_iff.1 hd
  obtain ⟨attributes, hattributes, hd⟩ := bind_eq_ok_iff.1 hd
  cases hd
  constructor
  · exact Fields.withDefault_gives (ElementRule.gives_ofDatum format).asList (by simp) helements
  · exact Fields.withDefault_gives (AttributeRule.gives_ofDatum format).asList (by simp) hattributes

theorem fault?_eq_none_iff {document : RuleDocument} : document.fault? = none ↔
    (∀ r ∈ document.elements, elementFault? r = none) ∧
    ∀ r ∈ document.attributes, attributeFault? r = none := by
  unfold fault?
  rw [Option.or_eq_none_iff, List.findSome?_eq_none_iff, List.findSome?_eq_none_iff]

/-- A document that is accepted has been read from data, and is refused for nothing. -/
theorem exists_of_read {format : DataFormat} {origin text : String} {document : RuleDocument}
    (h : read format origin text = .ok document) :
    document.fault? = none ∧ ∃ d, ofDatum format d = .ok document := by
  obtain ⟨decoded, hdecode, h⟩ := bind_eq_ok_iff.1 h
  cases hfault : decoded.fault? with
  | some fault =>
    rw [hfault] at h
    cases h
  | none =>
    rw [hfault] at h
    cases h
    refine ⟨hfault, ?_⟩
    -- the text is parsed before the document is read from it
    unfold decode at hdecode
    split at hdecode
    · cases hdecode
    · rename_i d _
      split at hdecode
      · cases hdecode
      · rename_i hread
        cases hdecode
        exact ⟨d, hread⟩

/-- All rules of a document that is accepted have been read and have passed the checks, wherever
they are said to come from. -/
theorem loaded_of_read {format : DataFormat} {origin text : String} {document : RuleDocument}
    (h : read format origin text = .ok document) :
    (∀ r ∈ (document.withOrigin origin).elements, r.Loaded) ∧
    ∀ r ∈ (document.withOrigin origin).attributes, r.Loaded := by
  obtain ⟨hfault, d, hread⟩ := exists_of_read h
  obtain ⟨helements, hattributes⟩ := fault?_eq_none_iff.1 hfault
  obtain ⟨hproper, hproper'⟩ := gives_ofDatum format d document hread
  constructor
  · intro r hr
    obtain ⟨q, hq, rfl⟩ := List.mem_map.1 hr
    exact ⟨hproper q hq, helements q hq⟩
  · intro r hr
    obtain ⟨q, hq, rfl⟩ := List.mem_map.1 hr
    exact ⟨hproper' q hq, hattributes q hq⟩

end RuleDocument

/-! ## Lists by name -/

section Shelves

variable {β : Type} {rank : β → Nat} {name : β → String} {P : β → Prop}

/-- Each list by name has members, all with that name and with a property, in descending order of
rank. -/
structure Arranged (rank : β → Nat) (name : β → String) (P : β → Prop)
    (shelves : SortedMap (List β)) : Prop where
  descending : ∀ {key xs}, shelves.get? key = some xs → Descending rank xs
  inhabited : ∀ {key xs}, shelves.get? key = some xs → xs ≠ []
  named : ∀ {key xs}, shelves.get? key = some xs → ∀ x ∈ xs, name x = key
  holds : ∀ {key xs}, shelves.get? key = some xs → ∀ x ∈ xs, P x

theorem arranged_empty : Arranged rank name P SortedMap.empty := by
  constructor <;> intro key xs h <;> cases h

/-- A list that comes about by one more member is a list from before, or one with that member in
it. -/
theorem get?_shelve {shelves : SortedMap (List β)} {x : β} {key : String} {xs : List β}
    (h : (shelve rank name shelves x).get? key = some xs) :
    shelves.get? key = some xs ∨
      name x = key ∧ xs = insertRanked rank x ((shelves.get? key).getD []) := by
  unfold shelve at h
  rw [SortedMap.get?_insert] at h
  split at h
  · rename_i hkey
    subst hkey
    exact Or.inr ⟨rfl, (Option.some.inj h).symm⟩
  · exact Or.inl h

theorem Arranged.shelve {shelves : SortedMap (List β)} (h : Arranged rank name P shelves) {x : β}
    (hx : P x) : Arranged rank name P (shelve rank name shelves x) := by
  -- what is known of the list that the new member is put into
  have hlist : ∀ key, Descending rank ((shelves.get? key).getD []) ∧
      ∀ y ∈ (shelves.get? key).getD [], name y = key ∧ P y := by
    intro key
    cases hkey : shelves.get? key with
    | none => exact ⟨List.Pairwise.nil, nofun⟩
    | some ys => exact ⟨h.descending hkey, fun y hy => ⟨h.named hkey y hy, h.holds hkey y hy⟩⟩
  constructor
  · intro key xs hxs
    rcases get?_shelve hxs with hold | ⟨-, rfl⟩
    · exact h.descending hold
    · exact descending_insertRanked (hlist key).1
  · intro key xs hxs
    rcases get?_shelve hxs with hold | ⟨-, rfl⟩
    · exact h.inhabited hold
    · exact List.ne_nil_of_mem (mem_insertRanked.2 (Or.inl rfl))
  · intro key xs hxs y hy
    rcases get?_shelve hxs with hold | ⟨hname, rfl⟩
    · exact h.named hold y hy
    · rcases mem_insertRanked.1 hy with rfl | hy
      · exact hname
      · exact ((hlist key).2 y hy).1
  · intro key xs hxs y hy
    rcases get?_shelve hxs with hold | ⟨-, rfl⟩
    · exact h.holds hold y hy
    · rcases mem_insertRanked.1 hy with rfl | hy
      · exact hx
      · exact ((hlist key).2 y hy).2

theorem arranged_foldl {shelves : SortedMap (List β)} (h : Arranged rank name P shelves)
    {xs : List β} (hxs : ∀ x ∈ xs, P x) :
    Arranged rank name P (xs.foldl (LayoutCompiler.shelve rank name) shelves) := by
  induction xs generalizing shelves with
  | nil => exact h
  | cons x xs ih =>
    refine ih (h.shelve (hxs x List.mem_cons_self)) fun y hy => ?_
    exact hxs y (List.mem_cons_of_mem x hy)

/-- All members of all lists have the property. -/
theorem Arranged.forall_mem {shelves : SortedMap (List β)} (h : Arranged rank name P shelves) :
    ∀ x ∈ shelves.values.flatten, P x := by
  intro x hx
  obtain ⟨xs, hxs, hx⟩ := List.mem_flatten.1 hx
  obtain ⟨⟨key, _⟩, hentry, rfl⟩ := List.mem_map.1 hxs
  exact h.holds (SortedMap.get?_eq_some_iff.2 hentry) x hx

end Shelves

/-! ## Books -/

namespace RuleBook

/-- The book of the rules of some texts, each with its format and where it comes from. Texts that
are refused leave nothing behind. -/
def ofTexts (texts : List (DataFormat × String × String)) : RuleBook :=
  ofHistory (texts.map fun (format, origin, raw) => .text format origin raw)

variable (texts : List (DataFormat × String × String))

theorem arranged_ofTexts_elements : Arranged ElementRule.priority ElementRule.id
    ElementRule.Loaded (ofTexts texts).elements := by
  unfold ofTexts
  rw [elements_ofHistory]
  refine arranged_foldl arranged_empty fun r hr => ?_
  obtain ⟨addition, haddition, hr⟩ := List.mem_flatMap.1 hr
  obtain ⟨⟨format, origin, raw⟩, -, rfl⟩ := List.mem_map.1 haddition
  simp only [Addition.elements] at hr
  split at hr
  · rename_i document hread
    exact (RuleDocument.loaded_of_read hread).1 r hr
  · cases hr

theorem arranged_ofTexts_attributes : Arranged AttributeRule.priority AttributeRule.id
    AttributeRule.Loaded (ofTexts texts).attributes := by
  unfold ofTexts
  rw [attributes_ofHistory]
  refine arranged_foldl arranged_empty fun r hr => ?_
  obtain ⟨addition, haddition, hr⟩ := List.mem_flatMap.1 hr
  obtain ⟨⟨format, origin, raw⟩, -, rfl⟩ := List.mem_map.1 haddition
  simp only [Addition.attributes] at hr
  split at hr
  · rename_i document hread
    exact (RuleDocument.loaded_of_read hread).2 r hr
  · cases hr

end RuleBook

end LayoutCompiler
