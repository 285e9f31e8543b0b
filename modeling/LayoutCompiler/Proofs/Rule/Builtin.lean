import LayoutCompiler.Proofs.Rule.Spelling
import LayoutCompiler.Rule.Builtin
/-!
# What the built-in rules write

Which attributes the rules of the platforms can write, and where. The rules are gone through one by
one, with the paths of their emissions spelled out.

* `RuleBook.forall_elementRules_builtin`, `RuleBook.forall_attributeRules_builtin`: what is true of
  the rules of a platform is true of those in its rule book.
* `Rule.Ios.writes_of_mem`: interface documents refer to colors and images by their names only.
* `RuleBook.spares_builtin_ios`, `RuleBook.spares_builtin_web`: no rule writes what the writers add.
-/

namespace LayoutCompiler

/-! ## Rule books of platforms -/

namespace RuleBook

/-- The additions that make the rule book of a platform. -/
def builtinHistory (target : Target) : List Addition :=
  (builtinDocuments target).map fun (origin, document) => .document (document.withOrigin origin)

theorem builtin_eq (target : Target) : builtin target = ofHistory (builtinHistory target) := by
  unfold builtin ofHistory builtinHistory
  rw [List.foldl_map]
  rfl

/-- What is true of the element rules of a platform, wherever they come from, is true of those in
its book. -/
theorem forall_elementRules_builtin {P : ElementRule → Prop} (target : Target)
    (h : ∀ document ∈ builtinDocuments target, ∀ rule ∈ document.2.elements, ∀ origin,
      P { rule with origin }) : ∀ rule ∈ (builtin target).elementRules, P rule := by
  have harranged : Arranged ElementRule.priority ElementRule.id P (builtin target).elements := by
    rw [builtin_eq, elements_ofHistory]
    refine arranged_foldl arranged_empty fun r hr => ?_
    obtain ⟨addition, haddition, hr⟩ := List.mem_flatMap.1 hr
    obtain ⟨⟨origin, document⟩, hdocument, rfl⟩ := List.mem_map.1 haddition
    obtain ⟨rule, hrule, rfl⟩ := List.mem_map.1 hr
    exact h _ hdocument rule hrule origin
  exact harranged.forall_mem

/-- What is true of the attribute rules of a platform, wherever they come from, is true of those in
its book. -/
theorem forall_attributeRules_builtin {P : AttributeRule → Prop} (target : Target)
    (h : ∀ document ∈ builtinDocuments target, ∀ rule ∈ document.2.attributes, ∀ origin,
      P { rule with origin }) : ∀ rule ∈ (builtin target).attributeRules, P rule := by
  have harranged : Arranged AttributeRule.priority AttributeRule.id P
      (builtin target).attributes := by
    rw [builtin_eq, attributes_ofHistory]
    refine arranged_foldl arranged_empty fun r hr => ?_
    obtain ⟨addition, haddition, hr⟩ := List.mem_flatMap.1 hr
    obtain ⟨⟨origin, document⟩, hdocument, rfl⟩ := List.mem_map.1 haddition
    obtain ⟨rule, hrule, rfl⟩ := List.mem_map.1 hr
    exact h _ hdocument rule hrule origin
  exact harranged.forall_mem

end RuleBook

/-! ## Interface documents -/

/-- An emission writes the name of the value that it is for. -/
structure Emission.WritesName (e : Emission) : Prop where
  whole : e.kind ≠ .state
  template : e.template = Template.parse "~name~"

namespace Rule.Ios

/-- Where an emission of a rule for values of a kind may write in a document: not to identifiers;
to the name of a color when it is that of a color with a name, and to an image when it is the name
of an image. -/
structure Place (kind : ValueKind) (e : Emission) (node : Option String) (key : String) : Prop where
  id : key ≠ "id"
  name : key = "name" → node = some "fontDescription" ∨
    node = some "color" ∧ e.WritesName ∧ kind ∈ [.colorResource, .colorStateResource]
  image : key = "image" → e.WritesName ∧ kind ∈ [.bitmapDrawable, .vectorDrawable]

/-- An emission of a rule for values of a kind writes to such places only, and finds nodes by their
keys. -/
abbrev Writes (kind : ValueKind) (e : Emission) : Prop := e.Keeps (· = "key") (Place kind e)

/-- Whether letters spell such a place, for an emission that writes the name of a color, or that of
an image. -/
def isPlace (color image : Bool) (node : Option (List Char)) (key : List Char) : Bool :=
  key != ['i', 'd'] &&
    (key != ['n', 'a', 'm', 'e'] ||
      node == some ['f', 'o', 'n', 't', 'D', 'e', 's', 'c', 'r', 'i', 'p', 't', 'i', 'o', 'n'] ||
      node == some ['c', 'o', 'l', 'o', 'r'] && color) &&
    (key != ['i', 'm', 'a', 'g', 'e'] || image)

theorem Writes.of_letters {kind : ValueKind} {e : Emission} {path : List Char} (color image : Bool)
    (hpath : e.path = Template.parse (String.ofList path))
    (hcolor : color = true → e.WritesName ∧ kind ∈ [.colorResource, .colorStateResource])
    (himage : image = true → e.WritesName ∧ kind ∈ [.bitmapDrawable, .vectorDrawable])
    (h : Emission.passes e.kind (· == ['k', 'e', 'y']) (isPlace color image) path = true) :
    Writes kind e := by
  -- the checks run over letters, and say of them what is meant of the texts
  have hspelled : ∀ {s : String} {cs : List Char}, s.toList = cs ↔ s = String.ofList cs :=
    fun {s cs} => ⟨fun h => by rw [← h, String.ofList_toList],
      fun h => by rw [h, String.toList_ofList]⟩
  refine .of_passes (fun key hkey => hspelled.1 (beq_iff_eq.1 hkey)) (fun node key hplace => ?_)
    hpath h
  simp only [isPlace, Bool.and_eq_true, Bool.or_eq_true, bne_iff_ne, beq_iff_eq, ne_eq,
    hspelled, Option.map_eq_some_iff] at hplace
  obtain ⟨⟨hid, hname⟩, hpicture⟩ := hplace
  refine ⟨hid, fun hkey => ?_, fun hkey => ?_⟩
  · rcases hname with (hother | ⟨s, rfl, rfl⟩) | ⟨⟨s, rfl, rfl⟩, hshown⟩
    · exact absurd hkey hother
    · exact Or.inl rfl
    · exact Or.inr ⟨rfl, hcolor hshown⟩
  · rcases hpicture with hother | hshown
    · exact absurd hkey hother
    · exact himage hshown

/-- All rules for interface documents write to such places. -/
theorem writes_of_mem : ∀ rule ∈ attributes, ∀ e ∈ rule.emit, Writes rule.kind e := by
  simp only [attributes, viewAttributes, textViewAttributes, buttonAttributes, editTextAttributes,
    imageViewAttributes, switchAttributes, scrollViewAttributes, progressBarAttributes,
    List.forall_mem_append, List.forall_mem_cons, List.not_mem_nil, false_implies, implies_true,
    and_true]
  repeat' apply And.intro
  -- an emission writes no name, or the name of a color, or that of an image
  all_goals
    first
      | exact Writes.of_letters false false rfl nofun nofun (by decide)
      | exact Writes.of_letters true false rfl (fun _ => ⟨⟨nofun, rfl⟩, by decide⟩) nofun
          (by decide)
      | exact Writes.of_letters false true rfl nofun (fun _ => ⟨⟨nofun, rfl⟩, by decide⟩)
          (by decide)

/-- No node of an interface document is made with an identifier or with a name in it. -/
theorem keys_of_mem : ∀ rule ∈ elements, ∀ b ∈ rule.template, ∀ key ∈ b.keys,
    key ∉ ["id", "name", "image"] := by
  decide

end Rule.Ios

/-! ## Fragments -/

namespace Rule.Web

/-- The keys under which a fragment has what its nodes say besides their attributes. -/
def addedKeys : List String := ["style", "data-outlet"]

/-- These keys in letters. -/
def addedLetters : List (List Char) :=
  [['s', 't', 'y', 'l', 'e'], ['d', 'a', 't', 'a', '-', 'o', 'u', 't', 'l', 'e', 't']]

theorem keys_of_mem : ∀ rule ∈ elements, ∀ b ∈ rule.template, ∀ key ∈ b.keys,
    key ∉ addedKeys := by
  decide

/-- No rule for fragments writes what is added to their nodes. -/
theorem spares_of_mem : ∀ rule ∈ attributes, ∀ e ∈ rule.emit, e.Spares addedKeys := by
  have hkeys : addedKeys = addedLetters.map String.ofList := rfl
  have hblank : ({ parts := [] } : Template) = Template.parse (String.ofList []) := rfl
  simp only [attributes, viewAttributes, linearLayoutAttributes, textViewAttributes,
    buttonAttributes, editTextAttributes, imageViewAttributes, switchAttributes,
    checkBoxAttributes, progressBarAttributes, List.forall_mem_append, List.forall_mem_cons,
    List.not_mem_nil, false_implies, implies_true, and_true]
  repeat' apply And.intro
  all_goals
    first
      | exact Emission.Spares.of_letters hkeys rfl (by decide)
      | exact Emission.Spares.of_letters hkeys hblank (by decide)

end Rule.Web

namespace RuleBook

/-- Interface documents leave identifiers to their writer. -/
theorem spares_builtin_ios : (builtin .ios).Spares ["id"] where
  elements := by
    refine forall_elementRules_builtin .ios fun document hdocument rule hrule _ => ?_
    rcases List.mem_pair.1 hdocument with rfl | rfl
    -- one of the two documents has the elements, the other one has the attributes
    · exact fun b hb key hkey hmem => Rule.Ios.keys_of_mem rule hrule b hb key hkey
        (List.mem_of_mem_take (i := 1) hmem)
    · cases hrule
  attributes := by
    refine forall_attributeRules_builtin .ios fun document hdocument rule hrule _ => ?_
    rcases List.mem_pair.1 hdocument with rfl | rfl
    · cases hrule
    · intro e he
      have hwrites := Rule.Ios.writes_of_mem rule hrule e he
      refine ⟨hwrites.charted, fun route hroute key hkey => ?_, fun route hroute place hplace => ?_⟩
      · rw [hwrites.steps route hroute key hkey]
        decide
      · rw [List.mem_singleton]
        exact (hwrites.target route hroute place hplace).id

/-- Fragments leave what is added to their writer. -/
theorem spares_builtin_web : (builtin .web).Spares Rule.Web.addedKeys where
  elements := by
    refine forall_elementRules_builtin .web fun document hdocument rule hrule _ => ?_
    rcases List.mem_pair.1 hdocument with rfl | rfl
    · exact Rule.Web.keys_of_mem rule hrule
    · cases hrule
  attributes := by
    refine forall_attributeRules_builtin .web fun document hdocument rule hrule _ => ?_
    rcases List.mem_pair.1 hdocument with rfl | rfl
    · cases hrule
    · exact Rule.Web.spares_of_mem rule hrule

end RuleBook

end LayoutCompiler
