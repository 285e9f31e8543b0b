import LayoutCompiler.Output.Swift
import LayoutCompiler.Output.TypeScript
import LayoutCompiler.Proofs.Compilation.OutletNames
import LayoutCompiler.Proofs.Text.Leads
import LayoutCompiler.Proofs.Text.Names
/-!
# Members of bindings

A binding has one member for each id that its layout declares, with the spelling of the id that
generated code uses. Spelling is all that keeps members apart: no writer and nothing before it looks
at the members that there are already.

* `Swift.declarations_code`, `TypeScript.members_code`: the members are read off the code.
* `Binds.of_names`: which members the bindings of a layout have.
* `members_of_ofElement`: when they are different ones.
-/

namespace LayoutCompiler

variable {α : Type}

/-! ## Classes -/

namespace Swift

/-- Whether a line of a class declares a property for an outlet. -/
def declares (code : String) : Bool := Text.leads (line 1 "@IBOutlet var ") code

/-- The lines of a class that declare properties for outlets. -/
def declarations (code : List String) : List String := code.filter declares

theorem declares_line (code : String) :
    declares (line 1 code) = Text.leads "@IBOutlet var " code :=
  Text.leads_append_append _ _ code

theorem declares_property (o : Outlet) : declares (line 1 (property o)) = true := by
  rw [declares_line, Text.leads_iff]
  unfold property
  refine ⟨o.name ++ ": " ++ o.typeName ++ (if o.isOptional then "?" else "!"), ?_⟩
  simp only [String.append_assoc]

theorem not_declares (lead rest : String)
    (h : Text.clash lead (line 1 "@IBOutlet var ") = true) : declares (lead ++ rest) = false :=
  Text.not_leads_of_clash h (Text.leads_iff.2 ⟨rest, rfl⟩)

theorem not_declares_line (lead rest : String) (h : Text.clash lead "@IBOutlet var " = true) :
    declares (line 1 (lead ++ rest)) = false := by
  rw [declares_line]
  exact Text.not_leads_of_clash h (Text.leads_iff.2 ⟨rest, rfl⟩)

theorem declarations_loader (className : String) : declarations (loader className) = [] := by
  unfold loader declarations
  rw [List.filter_eq_nil_iff]
  simp only [String.append_assoc, List.forall_mem_cons, Bool.not_eq_true]
  have hload := not_declares_line "static func load(into owner: "
  exact ⟨by decide, hload _ (by decide), by decide, by decide, by decide,
    fun _ hmem => nomatch hmem⟩

/-- The class of a layout declares a property for each outlet, and no others. -/
theorem declarations_code (t : Compilation α) :
    declarations (code t) = t.outlets.map fun o => line 1 (property o) := by
  have hhead : declarations [Output.banner t.file, "", "import UIKit", "",
      "final class " ++ bindingName t.name ++ ": NSObject \x7b",
      line 1 ("static let nibName = \"" ++ Text.pascalCase t.name ++ "\"")] = [] := by
    unfold declarations Output.banner
    rw [List.filter_eq_nil_iff]
    -- line by line: those with names in them by what they begin with, the others as they stand
    simp only [String.append_assoc, List.forall_mem_cons, Bool.not_eq_true]
    have hbanner := not_declares "// Generated by "
    have hclass := not_declares "final class "
    have hnib := not_declares_line "static let nibName = \""
    exact ⟨hbanner _ (by decide), by decide, by decide, by decide, hclass _ (by decide),
      hnib _ (by decide), fun _ hmem => nomatch hmem⟩
  have hproperties : declarations (if t.outlets.isEmpty then [] else
      "" :: t.outlets.map fun o => line 1 (property o)) =
      t.outlets.map fun o => line 1 (property o) := by
    split
    · rename_i hempty
      rw [List.isEmpty_iff.1 hempty]
      rfl
    · unfold declarations
      rw [List.filter_cons_of_neg (by decide), List.filter_eq_self]
      intro code hmem
      obtain ⟨o, -, rfl⟩ := List.mem_map.1 hmem
      exact declares_property o
  have hloader := declarations_loader (bindingName t.name)
  have hrest : declarations [""] = [] ∧ declarations ["\x7d"] = [] := by decide
  unfold declarations at *
  unfold code
  dsimp only
  rw [List.filter_append, List.filter_append, List.filter_append, List.filter_append, hhead,
    hproperties, hloader, hrest.1, hrest.2]
  simp only [List.nil_append, List.append_nil]

end Swift

/-! ## Interfaces -/

namespace TypeScript

/-- The lines of the interface in some code: those behind its head, up to the bracket that closes
it. -/
def members (code : List String) : List String :=
  ((code.dropWhile fun l => !Text.leads "export interface " l).drop 1).takeWhile (· != "\x7d")

/-- The interface of a layout has a member for the root, and one for each outlet. -/
theorem members_code (t : Compilation α) :
    members (code t) =
      line 1 "_root: HTMLElement;" :: t.outlets.map fun o => line 1 (member o) := by
  have hbanner : Text.leads "export interface " (Output.banner t.file) = false := by
    unfold Output.banner
    rw [String.append_assoc, String.append_assoc, String.append_assoc]
    have hclash : Text.clash "// Generated by " "export interface " = true := by decide
    exact Text.not_leads_of_clash hclash (Text.leads_iff.2 ⟨_, rfl⟩)
  have hhead : Text.leads "export interface "
      ("export interface " ++ bindingName t.name ++ " \x7b") = true := by
    rw [String.append_assoc]
    exact Text.leads_iff.2 ⟨_, rfl⟩
  have hindented : ∀ code : String, (line 1 code != "\x7d") = true := by
    intro code
    rw [bne_iff_ne]
    have hne := Text.append_ne_of_clash (show Text.clash "  " "\x7d" = true by decide) code ""
    rwa [String.append_empty] at hne
  have hblank : Text.leads "export interface " "" = false := by decide
  have houtlets : ∀ code ∈ t.outlets.map fun o => line 1 (member o), (code != "\x7d") = true := by
    intro code hmem
    obtain ⟨o, -, rfl⟩ := List.mem_map.1 hmem
    exact hindented (member o)
  unfold members code
  simp only [List.cons_append, List.nil_append, List.append_assoc]
  -- the head is the third line, and the bracket comes right after the outlets
  rw [List.dropWhile_cons_of_pos (by rw [hbanner]; rfl),
    List.dropWhile_cons_of_pos (by rw [hblank]; rfl),
    List.dropWhile_cons_of_neg (by rw [hhead]; decide), List.drop_one, List.tail_cons,
    List.takeWhile_cons_of_pos (p := (· != "\x7d")) (hindented _),
    List.takeWhile_append_of_pos houtlets, List.takeWhile_cons_of_neg (by decide), List.append_nil]

end TypeScript

/-! ## Members -/

/-- The declaration of a property that every variant has. -/
def Swift.declaration (name type : String) : String :=
  line 1 ("@IBOutlet var " ++ name ++ ": " ++ type ++ "!")

/-- The declaration of a member that every variant has. -/
def TypeScript.declaration (name type : String) : String := line 1 (name ++ ": " ++ type ++ ";")

/-- The bindings of a compilation have one member for each id, in this order, with the spelling of
the id for its name; besides these, the interface has the root. -/
structure Binds (c : Compilation α) (ids : List String) : Prop where
  class_members : List.Forall₂
    (fun id code => ∃ type, code = Swift.declaration (Text.camelCase id) type)
    ids (Swift.declarations (Swift.code c))
  interface_members : ∃ own,
    TypeScript.members (TypeScript.code c) = TypeScript.line 1 "_root: HTMLElement;" :: own ∧
    List.Forall₂ (fun id code => ∃ type, code = TypeScript.declaration (Text.camelCase id) type)
      ids own

/-- Outlets that are named for ids are declared under the spellings of these. -/
theorem forall₂_declaration {ids : List String} {outlets : List Outlet} {write : Outlet → String}
    {declaration : String → String → String}
    (hnames : outlets.map (·.name) = ids.map Text.camelCase)
    (hwrite : ∀ o ∈ outlets, write o = declaration o.name o.typeName) :
    List.Forall₂ (fun id code => ∃ type, code = declaration (Text.camelCase id) type)
      ids (outlets.map write) := by
  have hpairs : List.Forall₂ (fun id o => Text.camelCase id = Outlet.name o) ids outlets := by
    have heq : List.Forall₂ (· = ·) (ids.map Text.camelCase) (outlets.map (·.name)) := by
      rw [List.forall₂_eq_eq_eq]
      exact hnames.symm
    rwa [List.forall₂_map_left_iff, List.forall₂_map_right_iff] at heq
  have hlines : outlets.map write = outlets.map fun o => declaration o.name o.typeName :=
    List.map_congr_left hwrite
  rw [hlines, List.forall₂_map_right_iff]
  apply hpairs.imp
  intro id o hname
  exact ⟨o.typeName, by rw [hname]⟩

/-- Outlets that are named for ids and that every variant has are the members of the bindings. -/
theorem Binds.of_names {c : Compilation α} {ids : List String}
    (hnames : c.outlets.map (·.name) = ids.map Text.camelCase)
    (hopt : ∀ o ∈ c.outlets, o.isOptional = false) : Binds c ids := by
  constructor
  · rw [Swift.declarations_code]
    apply forall₂_declaration hnames
    intro o ho
    unfold Swift.property
    rw [hopt o ho]
    rfl
  · refine ⟨_, TypeScript.members_code c, ?_⟩
    apply forall₂_declaration hnames
    intro o ho
    -- a member that is not optional has no mark behind its name
    have hplain : TypeScript.member o = o.name ++ "" ++ ": " ++ o.typeName ++ ";" := by
      unfold TypeScript.member
      rw [hopt o ho]
      rfl
    rw [hplain, String.append_empty]
    rfl

/-! ## Layouts with ids -/

namespace Sample

/-- A stack of views with ids. -/
def labelled (ids : List String) : Element :=
  { tag := "LinearLayout", children := ids.map fun id => view [("android:id", "@+id/" ++ id)] }

end Sample

namespace Compilation

variable [Scalar α] {setting : Setting α} {file : String} {root : Element} {c : Compilation α}

/-- The bindings of a layout with different ids have one member for each of them, and these members
differ exactly when the spellings of the ids do. They do when the ids are made of words; ids that
differ in nothing but separators of which their spelling shows no trace make the same member. No id
makes the member that is there for the root. -/
theorem members_of_ofElement (h : ofElement setting file root = .ok c) (hids : root.ids.Nodup) :
    Binds c root.ids ∧ c.outlets.map (·.name) = root.ids.map Text.camelCase ∧
      "_root" ∉ c.outlets.map (·.name) ∧
      ((c.outlets.map (·.name)).Nodup ↔ ∀ id ∈ root.ids, ∀ other ∈ root.ids,
        Text.camelCase id = Text.camelCase other → id = other) ∧
      ((∀ id ∈ root.ids, Text.Conventional id) → (c.outlets.map (·.name)).Nodup) := by
  have hnames := names_of_ofElement h
  have hopt : ∀ o ∈ c.outlets, o.isOptional = false := by
    intro o ho
    exact (served_of_ofElement h o ho).1
  have hnodup : (c.outlets.map (·.name)).Nodup ↔ ∀ id ∈ root.ids, ∀ other ∈ root.ids,
      Text.camelCase id = Text.camelCase other → id = other := by
    rw [hnames]
    exact List.nodup_map_iff_inj_on hids
  refine ⟨.of_names hnames hopt, hnames, ?_, hnodup, ?_⟩
  · intro hmem
    rw [hnames] at hmem
    obtain ⟨id, -, hroot⟩ := List.mem_map.1 hmem
    -- a name in camel case has no underscore, and that of the root begins with one
    have hfree := Text.underscore_notMem_camelCase id
    rw [hroot] at hfree
    exact hfree (by decide)
  · intro hwords
    apply hnodup.2
    intro id hid other hother heq
    exact (hwords id hid).eq_of_camelCase (hwords other hother) heq

theorem members_of_labelled : ∃ plain clashing : Compilation ℚ,
    ofElement Sample.setting Sample.file (Sample.labelled ["title_text", "note"]) = .ok plain ∧
    plain.outlets.map (·.name) = ["titleText", "note"] ∧ (plain.outlets.map (·.name)).Nodup ∧
    ofElement Sample.setting Sample.file (Sample.labelled ["item_1", "item1"]) = .ok clashing ∧
    clashing.outlets.map (·.name) = ["item1", "item1"] ∧ Binds clashing ["item_1", "item1"] := by
  have hsome : ∀ ids ∈ [["title_text", "note"], ["item_1", "item1"]],
      (ofElement Sample.setting Sample.file (Sample.labelled ids)).toOption.isSome = true := by
    decide +kernel
  cases hplain : ofElement Sample.setting Sample.file (Sample.labelled ["title_text", "note"]) with
  | error e =>
    have hok := hsome _ List.mem_cons_self
    rw [hplain] at hok
    cases hok
  | ok plain =>
    cases hclashing : ofElement Sample.setting Sample.file
        (Sample.labelled ["item_1", "item1"]) with
    | error e =>
      have hok := hsome _ (List.mem_cons_of_mem _ List.mem_cons_self)
      rw [hclashing] at hok
      cases hok
    | ok clashing =>
      obtain ⟨-, hnames, -, -, hwords⟩ := members_of_ofElement hplain (by decide +kernel)
      obtain ⟨hbinds, hnames', -⟩ := members_of_ofElement hclashing (by decide +kernel)
      exact ⟨plain, clashing, rfl, hnames.trans (by decide +kernel), hwords (by decide +kernel),
        rfl, hnames'.trans (by decide +kernel), hbinds⟩

end Compilation

end LayoutCompiler
